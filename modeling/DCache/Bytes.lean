import DCache.Lib.Lines
import Mathlib.Order.Fin.Basic
import Mathlib.Data.List.Lex

/-! Bytes, C strings and the command words of `config.h`. A `std::string` is the list of its
bytes; a text that is formatted into an array is kept at its full length, and `Fits` says when
the array holds it. -/
namespace DCache

abbrev Byte := Fin 256

instance neZero_byte : @NeZero ℕ Zero.ofOfNat0 256 := ⟨by decide⟩

abbrev Str := List Byte

/-- A string literal of the source. -/
def lit (s : String) : Str := s.toList.map (fun c => Fin.ofNat 256 c.toNat)

/-- `'\n'` -/
def newline : Byte := 10

/-- What `c_str()` hands to a C function: the bytes before the first NUL. -/
def cstr (s : Str) : Str := s.takeWhile (fun b => b ≠ 0)

/-- The size of every message array. -/
def bufSize : ℕ := 1024

/-- The text and its terminating NUL fit the array that it is written to. -/
def Fits (s : Str) : Prop := s.length + 1 ≤ bufSize

instance (s : Str) : Decidable (Fits s) := inferInstanceAs (Decidable (_ ≤ _))

/-- What `recv` hands over: an error, the end of the stream, or received bytes. -/
inductive Recv
  | failed
  | closed
  | data (bytes : Str)

theorem cstr_eq_self {s : Str} : cstr s = s ↔ 0 ∉ s := by
  rw [cstr, List.takeWhile_eq_self_iff]
  constructor
  · intro h h0
    simpa using h 0 h0
  · intro h b hb
    simp only [decide_eq_true_eq]
    rintro rfl
    exact h hb

theorem cstr_append_of_notMem {s : Str} (t : Str) (h : 0 ∉ s) : cstr (s ++ t) = s ++ cstr t := by
  rw [cstr, List.takeWhile_append_of_pos]
  · rfl
  · intro b hb
    simp only [decide_eq_true_eq]
    rintro rfl
    exact h hb

theorem cstr_isPrefix (s : Str) : cstr s <+: s := List.takeWhile_prefix _

theorem takeWhile_line {line : Str} (h : newline ∉ line) (rest : Str) :
    (line ++ newline :: rest).takeWhile (fun b => b ≠ newline) = line := Lib.takeWhile_sep h rest

theorem dropWhile_line {line : Str} (h : newline ∉ line) (rest : Str) :
    ((line ++ newline :: rest).dropWhile (fun b => b ≠ newline)).drop 1 = rest := by
  rw [List.dropWhile_append_of_pos (by simpa [List.forall_mem_ne'] using h)]
  simp

theorem drop_line (line rest : Str) : (line ++ newline :: rest).drop (line.length + 1) = rest := by
  simp

theorem takeWhile_of_notMem {text : Str} (h : newline ∉ text) :
    text.takeWhile (fun b => b ≠ newline) = text := by
  simpa [List.takeWhile_eq_self_iff, List.forall_mem_ne'] using h

namespace Code

def backupInvalid : Str := lit "backup_invalid"
def updateHash : Str := lit "update_hash"
def updateBackup : Str := lit "update_backup"
def recoverBackup : Str := lit "recover_backup"
def moveData : Str := lit "move_data"
def setValue : Str := lit "set_value"
def setBackupValue : Str := lit "set_backup_value"
def getValue : Str := lit "get_value"
def getBackupValue : Str := lit "get_backup_value"
def dirtyData : Str := lit "dirty_data"
def dataNotExist : Str := lit "data_not_exist"
def getSuccess : Str := lit "get_success"

end Code
end DCache
