import DCache.Log.Log

/-! The section of `write_log` that forms a record in `m_buf`. `snprintf` and `vsnprintf` cut the text
to the size that they are given and return the length of the whole text. -/
namespace DCache
open DCache.Lib

namespace Log

/-- The time in a `struct tm`, and `tv_usec`. -/
structure Time where
  date : Date
  hour : ℕ
  min : ℕ
  sec : ℕ
  usec : ℕ
  hour_lt : hour < 24
  min_lt : min < 60
  sec_le : sec ≤ 60
  usec_lt : usec < 10 ^ 6

/-- What is copied to `s`. -/
def levelText (level : ℤ) : Str :=
  if level = 0 then lit "[debug]:"
  else if level = 1 then lit "[info]:"
  else if level = 2 then lit "[warn]:"
  else if level = 3 then lit "[erro]:"
  else lit "[info]:"

/-- `"%d-%02d-%02d %02d:%02d:%02d.%06ld %s "` -/
def stamp (time : Time) (level : ℤ) : Str :=
  decimal time.date.year ++ lit "-" ++ padded 2 time.date.mon ++ lit "-" ++
    padded 2 time.date.mday ++ lit " " ++ padded 2 time.hour ++ lit ":" ++ padded 2 time.min ++
    lit ":" ++ padded 2 time.sec ++ lit "." ++ padded 6 time.usec ++ lit " " ++
    levelText level ++ lit " "

/-- Bytes that are written one behind the other; `none` when one of them is written behind the end. -/
def writeAt (buf : Str) (i : ℕ) (bytes : Str) : Option Str :=
  if i + bytes.length ≤ buf.length then
    some (buf.take i ++ bytes ++ buf.drop (i + bytes.length))
  else none

/-- A call for the array at `buf + i`, with the length that it returns. -/
def snprintfAt (buf : Str) (i size : ℕ) (s : Str) : Option (ℕ × Str) :=
  if size = 0 then some (s.length, buf)
  else (writeAt buf i (snprintf size s ++ [0])).map fun buf => (s.length, buf)

/-- `text` is what the format gives. The result is `log_str`, and what `m_buf` holds. -/
def formRecord (logBufSize : ℕ) (buf : Str) (time : Time) (level : ℤ) (text : Str) :
    Option (Str × Str) := do
  let (n, buf) ← snprintfAt buf 0 48 (stamp time level)
  let (m, buf) ← snprintfAt buf n (logBufSize - 1) text
  let buf ← writeAt buf (n + m) [newline]
  let buf ← writeAt buf (n + m + 1) [0]
  some (cstr buf, buf)

section Writes
variable {buf buf' bytes rest : Str} {i : ℕ}

theorem of_writeAt (h : writeAt buf i bytes = some buf') :
    i + bytes.length ≤ buf.length ∧ buf'.length = buf.length := by
  unfold writeAt at h
  split_ifs at h with hi
  rw [← Option.some.inj h]
  refine ⟨hi, ?_⟩
  simp only [List.length_append, List.length_take, List.length_drop]
  omega

/-- What stands before the bytes stays. -/
theorem writeAt_append (a bytes : Str) (h : bytes.length ≤ rest.length) :
    writeAt (a ++ rest) a.length bytes = some (a ++ bytes ++ rest.drop bytes.length) := by
  have hl : a.length + bytes.length ≤ (a ++ rest).length := by
    rw [List.length_append]
    omega
  rw [writeAt, if_pos hl, List.take_left, List.drop_append, List.drop_eq_nil_of_le (by omega),
    List.nil_append, Nat.add_sub_cancel_left]

theorem snprintfAt_append (a rest : Str) {size : ℕ} {s : Str} (hs : s.length < size)
    (h : s.length < rest.length) : snprintfAt (a ++ rest) a.length size s =
      some (s.length, a ++ s ++ 0 :: rest.drop (s.length + 1)) := by
  have hcut : snprintf size s = s := List.take_of_length_le (by omega)
  have hroom : (s ++ [0]).length ≤ rest.length := by simpa using h
  have hwrite := writeAt_append a (s ++ [0]) hroom
  rw [snprintfAt, if_neg (by omega), hcut, hwrite]
  simp

theorem cstr_append_zero (s t : Str) : cstr (s ++ 0 :: t) = cstr s := by
  induction s with
  | nil => rfl
  | cons b s ih =>
    unfold cstr at ih ⊢
    rw [List.cons_append, List.takeWhile_cons, List.takeWhile_cons, ih]

end Writes

section Stamp
variable (time : Time) (level : ℤ)

theorem length_stamp : (stamp time level).length =
    (decimal time.date.year).length + (levelText level).length + 24 := by
  have hmon := time.date.mon_le
  have hmday := time.date.mday_le
  have hhour := time.hour_lt
  have hmin := time.min_lt
  have hsec := time.sec_le
  have husec := length_padded (by norm_num) time.usec_lt
  have hpad : ∀ n, n < 100 → (padded 2 n).length = 2 := by
    intro n hn
    exact length_padded (by norm_num) (by omega)
  simp only [stamp, List.length_append, hpad time.date.mon (by omega),
    hpad time.date.mday (by omega), hpad time.hour (by omega), hpad time.min (by omega),
    hpad time.sec (by omega), husec]
  have h₁ : (lit "-").length = 1 := rfl
  have h₂ : (lit " ").length = 1 := rfl
  have h₃ : (lit ":").length = 1 := rfl
  have h₄ : (lit ".").length = 1 := rfl
  omega

theorem length_levelText : (levelText level).length ≤ 8 := by
  unfold levelText
  split_ifs <;> decide

/-- The prefix is not cut. -/
theorem length_stamp_le : (stamp time level).length < 48 := by
  have hyear := time.date.int_year
  have hdecimal : (decimal time.date.year).length ≤ 10 :=
    length_decimal_le (by norm_num) (by omega)
  have hlevel := length_levelText level
  rw [length_stamp]
  omega

theorem zero_notMem_stamp : 0 ∉ stamp time level := by
  have hdecimal : (0 : Byte) ∉ decimal time.date.year := notMem_decimal rfl _
  have hpad : ∀ w n, (0 : Byte) ∉ padded w n := fun _ _ => notMem_padded rfl
  have hlevel : 0 ∉ levelText level := by
    unfold levelText
    split_ifs <;> decide
  have h₁ : (0 : Byte) ∉ lit "-" := by decide
  have h₂ : (0 : Byte) ∉ lit " " := by decide
  have h₃ : (0 : Byte) ∉ lit ":" := by decide
  have h₄ : (0 : Byte) ∉ lit "." := by decide
  simp [stamp, hdecimal, hpad, hlevel, h₁, h₂, h₃, h₄]

end Stamp

section FormRecord
variable {logBufSize : ℕ} {buf : Str} (time : Time) (level : ℤ) (text : Str)

/-- A text that fits is written behind the prefix, with the newline and the NUL behind it. -/
theorem formRecord_of_fits (hbuf : buf.length = logBufSize) (hsize : 64 ≤ logBufSize)
    (h : (stamp time level).length + text.length + 2 ≤ logBufSize) : ∃ buf',
      formRecord logBufSize buf time level text =
        some (stamp time level ++ cstr (text ++ [newline]), buf') := by
  have hstamp := length_stamp_le time level
  have hn := zero_notMem_stamp time level
  -- the four writes, one behind the other
  have h₁ := snprintfAt_append [] buf hstamp (by omega)
  rw [List.nil_append, List.nil_append, List.length_nil] at h₁
  obtain ⟨r₁, hr₁⟩ : ∃ r₁, buf.drop ((stamp time level).length + 1) = r₁ := ⟨_, rfl⟩
  have hlen₁ : r₁.length + (stamp time level).length + 1 = logBufSize := by
    rw [← hr₁, List.length_drop]
    omega
  rw [hr₁] at h₁
  have hroom : text.length < (0 :: r₁).length := by
    rw [List.length_cons]
    omega
  have htext : text.length < logBufSize - 1 := by omega
  have h₂ := snprintfAt_append (stamp time level) (0 :: r₁) htext hroom
  obtain ⟨b, r₂, hr₂⟩ : ∃ b r₂, (0 :: r₁).drop (text.length + 1) = b :: r₂ := by
    apply List.exists_cons_of_ne_nil
    rw [Ne, List.drop_eq_nil_iff, List.length_cons]
    omega
  rw [hr₂] at h₂
  have hone : ∀ b' : Byte, ∀ c r, [b'].length ≤ (c :: r : Str).length := by simp
  have h₃ := writeAt_append (stamp time level ++ text) [newline] (hone _ 0 (b :: r₂))
  have h₄ := writeAt_append (stamp time level ++ text ++ [newline]) [0] (hone _ b r₂)
  rw [List.length_append, List.length_singleton, List.drop_one, List.tail_cons] at h₃
  rw [List.length_append, List.length_append, List.length_singleton, List.length_singleton,
    List.drop_one, List.tail_cons] at h₄
  have hlog : cstr (stamp time level ++ text ++ [newline] ++ [0] ++ r₂) =
      stamp time level ++ cstr (text ++ [newline]) := by
    rw [List.append_assoc _ [0], List.singleton_append, cstr_append_zero, List.append_assoc,
      cstr_append_of_notMem _ hn]
  refine ⟨stamp time level ++ text ++ [newline] ++ [0] ++ r₂, ?_⟩
  simp only [formRecord, h₁, h₂, h₃, h₄, hlog, Option.bind_eq_bind, Option.bind_some]

/-- A text that does not fit is written behind the end of the array. -/
theorem fits_of_formRecord {o : Str × Str} (hbuf : buf.length = logBufSize)
    (hsize : 64 ≤ logBufSize) (h : formRecord logBufSize buf time level text = some o) :
    (stamp time level).length + text.length + 2 ≤ logBufSize := by
  have hsnprintf : ∀ {buf buf' : Str} {i size n : ℕ} {s : Str}, size ≠ 0 →
      snprintfAt buf i size s = some (n, buf') → n = s.length ∧ buf'.length = buf.length := by
    intro buf buf' i size n s hne h
    rw [snprintfAt, if_neg hne] at h
    obtain ⟨buf₁, hwrite, ho⟩ := Option.map_eq_some_iff.mp h
    obtain ⟨rfl, rfl⟩ := Prod.mk.inj ho
    exact ⟨rfl, (of_writeAt hwrite).2⟩
  simp only [formRecord, Option.bind_eq_bind] at h
  obtain ⟨⟨n, buf₁⟩, h₁, h⟩ := Option.bind_eq_some_iff.mp h
  obtain ⟨⟨m, buf₂⟩, h₂, h⟩ := Option.bind_eq_some_iff.mp h
  obtain ⟨buf₃, h₃, h⟩ := Option.bind_eq_some_iff.mp h
  obtain ⟨buf₄, h₄, -⟩ := Option.bind_eq_some_iff.mp h
  obtain ⟨hn, hlen₁⟩ := hsnprintf (by norm_num) h₁
  obtain ⟨hm, hlen₂⟩ := hsnprintf (by omega) h₂
  obtain ⟨-, hlen₃⟩ := of_writeAt h₃
  obtain ⟨hlast, -⟩ := of_writeAt h₄
  rw [List.length_singleton] at hlast
  dsimp only at hn hm hlen₁ hlen₂ hlen₃ hlast
  omega

/-- The record is what it should be exactly for the texts that leave room for the prefix, the newline
and the NUL, and hold no NUL. -/
theorem formRecord_iff (hbuf : buf.length = logBufSize) (hsize : 64 ≤ logBufSize) :
    (∃ buf', formRecord logBufSize buf time level text = some (stamp time level ++
      text.take (logBufSize - (stamp time level).length - 2) ++ [newline], buf')) ↔
      (decimal time.date.year).length + (levelText level).length + 26 + text.length ≤ logBufSize ∧
        0 ∉ text := by
  have hlen := length_stamp time level
  constructor
  · rintro ⟨buf', h⟩
    have hfits := fits_of_formRecord time level text hbuf hsize h
    refine ⟨by omega, ?_⟩
    obtain ⟨buf'', h'⟩ := formRecord_of_fits time level text hbuf hsize hfits
    have hlog := (Prod.mk.inj (Option.some.inj (h'.symm.trans h))).1
    rw [List.take_of_length_le (by omega), List.append_assoc] at hlog
    have htext := cstr_eq_self.mp (List.append_cancel_left hlog)
    exact fun hm => htext (List.mem_append_left _ hm)
  · rintro ⟨hfits, htext⟩
    obtain ⟨buf', h⟩ := formRecord_of_fits time level text hbuf hsize (by omega)
    refine ⟨buf', ?_⟩
    have hnul : 0 ∉ text ++ [newline] := by
      rw [List.mem_append, not_or]
      exact ⟨htext, by decide⟩
    rw [h, cstr_eq_self.mpr hnul, List.take_of_length_le (by omega), List.append_assoc]

end FormRecord

def noon : Time :=
  ⟨july, 12, 0, 0, 0, by norm_num, by norm_num, by norm_num, by norm_num⟩

theorem formRecord_iff_hello :
    (∃ buf', formRecord 64 (List.replicate 64 0) noon 1 (lit "hello") = some (stamp noon 1 ++
      (lit "hello").take (64 - (stamp noon 1).length - 2) ++ [newline], buf')) ↔
      (decimal noon.date.year).length + (levelText 1).length + 26 + (lit "hello").length ≤ 64 ∧
        0 ∉ lit "hello" :=
  formRecord_iff noon 1 (lit "hello") rfl le_rfl

/-- A text of 28 characters puts the final NUL behind an array of 64. -/
theorem not_formRecord_long :
    formRecord 64 (List.replicate 64 0) noon 1 (List.replicate 28 120) = none ∧
      ¬ ∃ buf', formRecord 64 (List.replicate 64 0) noon 1 (List.replicate 28 120) =
        some (stamp noon 1 ++ (List.replicate 28 120).take (64 - (stamp noon 1).length - 2) ++
          [newline], buf') := by
  have hnone : formRecord 64 (List.replicate 64 0) noon 1 (List.replicate 28 120) = none := by
    decide +kernel
  refine ⟨hnone, ?_⟩
  rintro ⟨buf', h⟩
  cases hnone.symm.trans h

end Log
end DCache
