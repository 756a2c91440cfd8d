import DCache.EndPoint
import DCache.Lib.Run

/-! The files of the log (`log/log.cpp`): what `init` opens and what the sections of `write_log` that
hold `m_mutex` do with them. What is written for a call is a record of any type, since no name
depends on it. `none` is a write behind an array, a division by zero, or the use of a null `m_fp`. -/
namespace DCache
open DCache.Lib

/-- `%02d`, `%06ld` -/
def padded (width n : ℕ) : Str := List.replicate (width - (decimal n).length) 48 ++ decimal n

section Padded
variable {width n : ℕ}

theorem isDigit_of_mem_padded {b : Byte} (h : b ∈ padded width n) : isDigit b = true := by
  rcases List.mem_append.mp h with h | h
  · rw [List.eq_of_mem_replicate h]
    rfl
  · exact isDigit_of_mem_decimal h

theorem notMem_padded {b : Byte} (h : isDigit b = false) : b ∉ padded width n := by
  intro hm
  rw [isDigit_of_mem_padded hm] at h
  cases h

theorem digitsValue_zeros (k : ℕ) (s : Str) :
    digitsValue 0 (List.replicate k 48 ++ s) = digitsValue 0 s := by
  induction k with
  | zero => rfl
  | succ k ih => exact ih

theorem padded_injective (width : ℕ) : Function.Injective (padded width) := by
  have hvalue : ∀ n, digitsValue 0 (padded width n) = n := by
    intro n
    rw [padded, digitsValue_zeros, digitsValue_decimal]
  intro n n' h
  rw [← hvalue n, h, hvalue]

theorem length_padded (hw : 1 ≤ width) (h : n < 10 ^ width) : (padded width n).length = width := by
  have hlen := length_decimal_le hw h
  rw [padded, List.length_append, List.length_replicate]
  omega

end Padded

/-- What `snprintf` leaves of a text in an array of this size. -/
def snprintf (size : ℕ) (s : Str) : Str := s.take (size - 1)

/-- `'/'` -/
def slash : Byte := 47

def underscore : Byte := 95

/-- The position of the last occurrence. -/
def strrchr (ch : Byte) : Str → Option ℕ
  | [] => none
  | b :: s => ((strrchr ch s).map (· + 1)).or (if b = ch then some 0 else none)

/-- The date in a `struct tm`. -/
structure Date where
  year : ℕ
  mon : ℕ
  mday : ℕ
  int_year : year < 2 ^ 31
  mon_pos : 1 ≤ mon
  mon_le : mon ≤ 12
  mday_pos : 1 ≤ mday
  mday_le : mday ≤ 31
deriving DecidableEq

def july : Date := ⟨2024, 7, 9, by decide, by decide, by decide, by decide, by decide⟩

instance : Inhabited Date := ⟨july⟩

/-- `"%d_%02d_%02d_"` -/
def Date.text (date : Date) : Str :=
  decimal date.year ++ underscore :: (padded 2 date.mon ++ underscore ::
    (padded 2 date.mday ++ [underscore]))

/-- `mFp` is the name of the open file. `written` lists the calls of `fputs`, with their files. -/
structure Log (R : Type) where
  dirName : Str
  logName : Str
  mSplitLines : ℕ
  mCount : ℕ
  mToday : ℕ
  mFp : Option Str
  written : List (Str × R)
deriving DecidableEq

namespace Log
variable {R : Type}

/-- The size of `dir_name` and of `log_name`. -/
def nameSize : ℕ := 128

/-- What `init` leaves in `dir_name`, `log_name` and `log_full_name`. The first two are filled only when
there is a `'/'`, and else they are empty. -/
def names (fileName : Str) (date : Date) : Option (Str × Str × Str) :=
  match strrchr slash fileName with
  | none => some ([], [], snprintf 255 (date.text ++ fileName))
  | some p =>
    let logName := fileName.drop (p + 1)
    let dirName := fileName.take (p + 1)
    if logName.length < nameSize ∧ dirName.length < nameSize then
      some (dirName, logName, snprintf 255 (dirName ++ date.text ++ logName))
    else none

/-- `opened` says whether `fopen` succeeds. -/
def init (fileName : Str) (splitLines : ℕ) (date : Date) (opened : Bool) : Option (Bool × Log R) :=
  (names fileName date).map fun o => (opened, {
    dirName := o.1
    logName := o.2.1
    mSplitLines := splitLines
    mCount := 0
    mToday := date.mday
    mFp := if opened then some o.2.2 else none
    written := [] })

theorem of_init {fileName : Str} {splitLines : ℕ} {date : Date} {opened ret : Bool} {log : Log R}
    (h : init fileName splitLines date opened = some (ret, log)) : log.written = [] := by
  obtain ⟨o, -, ho⟩ := Option.map_eq_some_iff.mp h
  obtain ⟨-, rfl⟩ := Prod.mk.inj ho
  rfl

/-- The name that is formatted into `new_log`. -/
def newLog (log : Log R) (date : Date) : Str :=
  log.dirName ++ snprintf 16 date.text ++ log.logName ++
    if log.mToday ≠ date.mday then [] else dot :: decimal ((log.mCount + 1) / log.mSplitLines)

/-- The file is changed. -/
def Rotates (log : Log R) (date : Date) : Prop :=
  log.mToday ≠ date.mday ∨ (log.mCount + 1) % log.mSplitLines = 0

instance (log : Log R) (date : Date) : Decidable (log.Rotates date) :=
  inferInstanceAs (Decidable (_ ∨ _))

/-- The first section: it counts the line and changes the file. -/
def rotate (log : Log R) (date : Date) (opened : Bool) : Option (Log R) :=
  if log.mToday = date.mday ∧ log.mSplitLines = 0 then none
  else if log.Rotates date then
    if log.mFp = none then none
    else some { log with
      mCount := if log.mToday ≠ date.mday then 0 else log.mCount + 1
      mToday := date.mday
      mFp := if opened then some (snprintf 255 (log.newLog date)) else none }
  else some { log with mCount := log.mCount + 1 }

/-- The last section, and the file that it writes to. -/
def fputs (log : Log R) (r : R) : Option (Str × Log R) :=
  log.mFp.map fun name => (name, { log with written := log.written ++ [(name, r)] })

/-- A call in synchronous mode, for a record of this date. -/
def writeLog (date : R → Date) (log : Log R) (e : R × Bool) : Option (Str × Log R) := do
  let log ← log.rotate (date e.1) e.2
  log.fputs e.1

end Log
end DCache
