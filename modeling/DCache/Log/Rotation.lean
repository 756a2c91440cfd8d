import DCache.Log.Log
import Mathlib.Data.List.DropRight

/-! Which file a record goes to. A file is named after a date and a number, and the files follow each
other in the order of dates and numbers, so a file that is left is not opened again. -/
namespace DCache
open DCache.Lib

namespace Date
variable {d d' : Date}

/-- The position in a calendar of 12 months of 31 days. -/
def number (d : Date) : ℕ := (d.year * 13 + d.mon) * 32 + d.mday

theorem eq_of_fields (hy : d.year = d'.year) (hm : d.mon = d'.mon) (hd : d.mday = d'.mday) :
    d = d' := by
  cases d
  cases d'
  simp only at hy hm hd
  subst hy hm hd
  rfl

theorem number_injective : Function.Injective number := by
  intro d d' h
  have hm := d.mon_le
  have hm' := d'.mon_le
  have hd := d.mday_le
  have hd' := d'.mday_le
  unfold number at h
  apply eq_of_fields <;> omega

instance : LinearOrder Date := LinearOrder.lift' number number_injective

/-- What stands behind a date does not blur it. -/
theorem text_append_inj {s s' : Str} (h : d.text ++ s = d'.text ++ s') : d = d' ∧ s = s' := by
  have hsep : ∀ n, underscore ∉ decimal n := notMem_decimal rfl
  have hsep2 : ∀ n, underscore ∉ padded 2 n := fun _ => notMem_padded rfl
  unfold text at h
  simp only [List.append_assoc, List.cons_append, List.nil_append] at h
  obtain ⟨hy, h⟩ := append_sep_inj (hsep _) (hsep _) h
  obtain ⟨hm, h⟩ := append_sep_inj (hsep2 _) (hsep2 _) h
  obtain ⟨hd, h⟩ := append_sep_inj (hsep2 _) (hsep2 _) h
  exact ⟨eq_of_fields (decimal_injective hy) (padded_injective 2 hm) (padded_injective 2 hd), h⟩

end Date

/-- The name of the file of a date, after so many changes for want of lines. -/
def logFile (dir base : Str) (date : Date) (k : ℕ) : Str :=
  dir ++ date.text ++ base ++ if k = 0 then [] else dot :: decimal k

section LogFile
variable {dir base : Str} {d d' : Date} {k k' : ℕ}

theorem logFile_inj (h : logFile dir base d k = logFile dir base d' k') : d = d' ∧ k = k' := by
  unfold logFile at h
  simp only [List.append_assoc] at h
  obtain ⟨hd, h⟩ := Date.text_append_inj (List.append_cancel_left h)
  have hsuffix := List.append_cancel_left h
  refine ⟨hd, ?_⟩
  by_cases hk : k = 0
  · by_cases hk' : k' = 0
    · rw [hk, hk']
    · rw [if_pos hk, if_neg hk'] at hsuffix
      cases hsuffix
  · by_cases hk' : k' = 0
    · rw [if_neg hk, if_pos hk'] at hsuffix
      cases hsuffix
    · rw [if_neg hk, if_neg hk'] at hsuffix
      exact decimal_injective (List.cons.inj hsuffix).2

end LogFile

/-- The part of a file name up to the last `'/'`, and what follows it. -/
def dirPart (fileName : Str) : Str := fileName.rdropWhile fun b => b ≠ slash

def baseName (fileName : Str) : Str := fileName.rtakeWhile fun b => b ≠ slash

section Parts
variable {fileName : Str}

theorem strrchr_of_notMem {ch : Byte} {s : Str} (h : ch ∉ s) : strrchr ch s = none := by
  induction s with
  | nil => rfl
  | cons b s ih =>
    rw [List.mem_cons, not_or] at h
    obtain ⟨hb, hs⟩ := h
    rw [strrchr, ih hs, if_neg (Ne.symm hb)]
    rfl

theorem strrchr_append {ch : Byte} {t : Str} (s : Str) (h : ch ∉ t) :
    strrchr ch (s ++ ch :: t) = some s.length := by
  induction s with
  | nil =>
    rw [List.nil_append, strrchr, strrchr_of_notMem h, if_pos rfl]
    rfl
  | cons b s ih =>
    rw [List.cons_append, strrchr, ih]
    rfl

theorem slash_notMem_baseName : slash ∉ baseName fileName := by
  intro h
  have := List.mem_rtakeWhile_imp h
  simp at this

theorem dirPart_append_baseName : dirPart fileName ++ baseName fileName = fileName :=
  List.rdropWhile_append_rtakeWhile

theorem parts_of_notMem (h : slash ∉ fileName) :
    dirPart fileName = [] ∧ baseName fileName = fileName := by
  have hall : ∀ b ∈ fileName, decide (b ≠ slash) = true := by
    intro b hb
    rw [decide_eq_true_eq]
    rintro rfl
    exact h hb
  exact ⟨List.rdropWhile_eq_nil_iff.mpr hall, List.rtakeWhile_eq_self_iff.mpr hall⟩

theorem parts_of_mem (h : slash ∈ fileName) : ∃ s, dirPart fileName = s ++ [slash] ∧
    fileName = s ++ slash :: baseName fileName := by
  have hne : dirPart fileName ≠ [] := by
    intro hnil
    have hall := List.rdropWhile_eq_nil_iff.mp hnil slash h
    simp at hall
  have hlast : (dirPart fileName).getLast hne = slash := by
    have hp := List.rdropWhile_last_not (fun b => decide (b ≠ slash)) fileName hne
    simpa [dirPart] using hp
  have hdir : (dirPart fileName).dropLast ++ [slash] = dirPart fileName := by
    rw [← hlast]
    exact List.dropLast_append_getLast hne
  refine ⟨_, hdir.symm, ?_⟩
  rw [List.append_cons, hdir]
  exact dirPart_append_baseName.symm

end Parts

namespace Log
variable {R : Type}

/-- The names fit the arrays of `init`. -/
def InitFits (fileName : Str) (date : Date) : Prop :=
  (slash ∈ fileName → (baseName fileName).length < nameSize ∧
    (dirPart fileName).length < nameSize) ∧
  (logFile (dirPart fileName) (baseName fileName) date 0).length < 255

instance (fileName : Str) (date : Date) : Decidable (InitFits fileName date) :=
  inferInstanceAs (Decidable (_ ∧ _))

/-- The base name is at hand when the file is changed. -/
def Stored (fileName : Str) : Prop := slash ∈ fileName ∨ fileName = []

instance (fileName : Str) : Decidable (Stored fileName) := inferInstanceAs (Decidable (_ ∨ _))

theorem snprintf_of_lt {size : ℕ} {s : Str} (h : s.length < size) : snprintf size s = s :=
  List.take_of_length_le (by omega)

theorem init_of_fits {fileName : Str} {date : Date} (h : InitFits fileName date) (splitLines : ℕ) :
    ∃ logName, (Stored fileName → logName = baseName fileName) ∧
      init fileName splitLines date true = some (true, (⟨dirPart fileName, logName, splitLines, 0,
        date.mday, some (logFile (dirPart fileName) (baseName fileName) date 0), []⟩ : Log R)) := by
  obtain ⟨harrays, hname⟩ := h
  have hfile : ∀ dir base : Str, logFile dir base date 0 = dir ++ date.text ++ base := by
    intro dir base
    rw [logFile, if_pos rfl, List.append_nil]
  by_cases hs : slash ∈ fileName
  · obtain ⟨s, hdir, he⟩ := parts_of_mem hs
    refine ⟨baseName fileName, fun _ => rfl, ?_⟩
    have hp : strrchr slash fileName = some s.length := by
      rw [he]
      exact strrchr_append s slash_notMem_baseName
    have hbase : fileName.drop (s.length + 1) = baseName fileName :=
      (congrArg (List.drop (s.length + 1)) he).trans (by simp)
    have htake : fileName.take (s.length + 1) = dirPart fileName :=
      (congrArg (List.take (s.length + 1)) he).trans (by simp [hdir, List.take_append])
    rw [hfile] at hname ⊢
    simp only [init, names, hp, hbase, htake, if_pos (harrays hs), snprintf_of_lt hname,
      Option.map_some, if_true]
  · obtain ⟨hdir, hbase⟩ := parts_of_notMem hs
    refine ⟨[], ?_, ?_⟩
    · rintro (hm | rfl)
      · exact absurd hm hs
      · exact hbase.symm
    · rw [hfile] at hname ⊢
      rw [hdir, hbase, List.nil_append] at hname ⊢
      simp only [init, names, strrchr_of_notMem hs, snprintf_of_lt hname, Option.map_some, if_true]

/-- What a rotation promises: a file is named after the directory, the date of its records, the base
name and a number that does not decrease, and no file holds too many records. -/
structure Filed (date : R → Date) (dir base : Str) (splitLines : ℕ) (written : List (Str × R)) :
    Prop where
  named : ∀ w ∈ written, ∃ k, w.1 = logFile dir base (date w.2) k
  running : written.Pairwise fun w w' => ∀ k k', w.1 = logFile dir base (date w.2) k →
    w'.1 = logFile dir base (date w'.2) k' → date w.2 = date w'.2 → k ≤ k'
  bounded : ∀ name, written.countP (fun w => w.1 = name) ≤ splitLines

/-- The open file is that of the last date, and no file behind it was opened. -/
structure InFile (date : R → Date) (fileName : Str) (splitLines : ℕ) (log : Log R) (last : Date) :
    Prop where
  dirName : log.dirName = dirPart fileName
  logName : Stored fileName → log.logName = baseName fileName
  split : log.mSplitLines = splitLines
  today : log.mToday = last.mday
  fp : log.mFp = some (logFile (dirPart fileName) (baseName fileName) last
    (log.mCount / splitLines))
  before : ∀ w ∈ log.written, ∀ k, w.1 = logFile (dirPart fileName) (baseName fileName) (date w.2) k →
    date w.2 < last ∨ date w.2 = last ∧ k ≤ log.mCount / splitLines
  current : log.written.countP (fun w => w.1 = logFile (dirPart fileName) (baseName fileName) last
    (log.mCount / splitLines)) ≤ log.mCount % splitLines + 1
  filed : Filed date (dirPart fileName) (baseName fileName) splitLines log.written

/-- The date of a record is not earlier than the last one, and it is the last one unless the file is
changed; when it is changed, the base name is at hand, the new name fits and `fopen` succeeds. -/
def Steady (date : R → Date) (fileName : Str) (log : Log R) (last : Date) (e : R × Bool) : Prop :=
  last ≤ date e.1 ∧ (¬ log.Rotates (date e.1) → date e.1 = last) ∧
    (log.Rotates (date e.1) → e.2 = true ∧ Stored fileName ∧ (date e.1).text.length < 16 ∧
      (log.newLog (date e.1)).length < 255)

instance (date : R → Date) (fileName : Str) (log : Log R) (last : Date) (e : R × Bool) :
    Decidable (Steady date fileName log last e) := inferInstanceAs (Decidable (_ ∧ _ ∧ _))

section Run
variable {date : R → Date} {fileName : Str} {splitLines : ℕ} {log : Log R} {last : Date}
  {e : R × Bool}

/-- The number of the file is the number of changes for want of lines. -/
theorem newLog_eq (hi : InFile date fileName splitLines log last) (hs : 1 ≤ splitLines)
    {d : Date} (hstored : Stored fileName) (htail : d.text.length < 16) (hrot : log.Rotates d) :
    log.newLog d = logFile (dirPart fileName) (baseName fileName) d
      ((if log.mToday ≠ d.mday then 0 else log.mCount + 1) / splitLines) := by
  unfold newLog logFile
  rw [hi.dirName, hi.logName hstored, hi.split, snprintf_of_lt htail]
  by_cases htoday : log.mToday ≠ d.mday
  · rw [if_pos htoday, if_pos htoday, Nat.zero_div, if_pos rfl]
  · have hcount : (log.mCount + 1) % splitLines = 0 := hi.split ▸ hrot.resolve_left htoday
    have hdvd := Nat.dvd_of_mod_eq_zero hcount
    have hpos : (log.mCount + 1) / splitLines ≠ 0 :=
      (Nat.div_pos (Nat.le_of_dvd (Nat.succ_pos _) hdvd) hs).ne'
    rw [if_neg htoday, if_neg htoday, if_neg hpos]

/-- Either the file stays, or its date and number are new. -/
theorem rotate_steady (hi : InFile date fileName splitLines log last) (hs : 1 ≤ splitLines)
    (h : Steady date fileName log last e) : ∃ count, log.rotate (date e.1) e.2 = some { log with
        mCount := count
        mToday := (date e.1).mday
        mFp := some (logFile (dirPart fileName) (baseName fileName) (date e.1)
          (count / splitLines)) } ∧
      (date e.1 = last ∧ count / splitLines = log.mCount / splitLines ∧
          count % splitLines = log.mCount % splitLines + 1 ∨
        last < date e.1 ∨ date e.1 = last ∧ log.mCount / splitLines < count / splitLines) := by
  obtain ⟨hle, hstay, hchange⟩ := h
  have hfault : ¬ (log.mToday = (date e.1).mday ∧ log.mSplitLines = 0) := by
    rw [hi.split]
    omega
  unfold rotate
  rw [if_neg hfault]
  by_cases hrot : log.Rotates (date e.1)
  · obtain ⟨hopen, hstored, htail, hname⟩ := hchange hrot
    rw [if_pos hrot, if_neg (by rw [hi.fp]; exact Option.some_ne_none _), hopen, if_pos rfl,
      snprintf_of_lt hname, newLog_eq hi hs hstored htail hrot]
    refine ⟨_, rfl, Or.inr ?_⟩
    by_cases htoday : log.mToday ≠ (date e.1).mday
    · left
      apply lt_of_le_of_ne hle
      intro he
      rw [hi.today, he] at htoday
      exact htoday rfl
    · rcases hle.lt_or_eq with hlt | he
      · exact Or.inl hlt
      · have hcount : (log.mCount + 1) % splitLines = 0 := hi.split ▸ hrot.resolve_left htoday
        have hq := Nat.succ_div_of_dvd (Nat.dvd_of_mod_eq_zero hcount)
        rw [if_neg htoday, hq]
        exact Or.inr ⟨he.symm, Nat.lt_succ_self _⟩
  · have hsame := hstay hrot
    obtain ⟨-, hcount⟩ := not_or.mp hrot
    rw [hi.split] at hcount
    have hq : (log.mCount + 1) / splitLines = log.mCount / splitLines :=
      Nat.succ_div_of_not_dvd fun hd => hcount (Nat.mod_eq_zero_of_dvd hd)
    refine ⟨log.mCount + 1, ?_, Or.inl ⟨hsame, hq, ?_⟩⟩
    · have hmday : (date e.1).mday = log.mToday := by rw [hsame, hi.today]
      rw [if_neg hrot, hmday, hsame, hq, ← hi.fp]
    · have hdiv := Nat.div_add_mod (log.mCount + 1) splitLines
      have hdiv' := Nat.div_add_mod log.mCount splitLines
      rw [hq] at hdiv
      omega

theorem countP_concat_name {written : List (Str × R)} {name name' : Str} {r : R} :
    (written ++ [(name, r)]).countP (fun w => w.1 = name') =
      written.countP (fun w => w.1 = name') + if name = name' then 1 else 0 := by
  rw [List.countP_append, List.countP_singleton]
  simp only [decide_eq_true_eq]

/-- No record went to a file of a later date or a higher number. -/
theorem countP_new (hi : InFile date fileName splitLines log last) {d : Date} {k : ℕ}
    (hnew : last < d ∨ d = last ∧ log.mCount / splitLines < k) : log.written.countP
      (fun w => w.1 = logFile (dirPart fileName) (baseName fileName) d k) = 0 := by
  rw [List.countP_eq_zero]
  intro w hw hname
  rw [decide_eq_true_eq] at hname
  obtain ⟨k', hk'⟩ := hi.filed.named w hw
  obtain ⟨hd, rfl⟩ := logFile_inj (hk'.symm.trans hname)
  have hbefore := hi.before w hw k' hk'
  rw [hd] at hbefore
  rcases hnew with hlt | ⟨rfl, hlt⟩
  · rcases hbefore with hb | ⟨rfl, -⟩
    · exact lt_asymm hlt hb
    · exact lt_irrefl _ hlt
  · rcases hbefore with hb | ⟨-, hb⟩
    · exact lt_irrefl _ hb
    · omega

/-- A record goes to a file that has room, with no file of a later number behind it. -/
theorem Filed.concat {dir base : Str} {written : List (Str × R)} {r : R} {k : ℕ}
    (hf : Filed date dir base splitLines written)
    (hbefore : ∀ w ∈ written, ∀ j, w.1 = logFile dir base (date w.2) j →
      date w.2 < date r ∨ date w.2 = date r ∧ j ≤ k)
    (hroom : written.countP (fun w => w.1 = logFile dir base (date r) k) < splitLines) :
    Filed date dir base splitLines (written ++ [(logFile dir base (date r) k, r)]) := by
  constructor
  · intro w hw
    rcases List.mem_append.mp hw with hw | hw
    · exact hf.named w hw
    · obtain rfl := List.mem_singleton.mp hw
      exact ⟨k, rfl⟩
  · apply List.pairwise_append.mpr
    refine ⟨hf.running, List.pairwise_singleton _ _, ?_⟩
    intro w hw w' hw' j j' hj hj' hd
    obtain rfl := List.mem_singleton.mp hw'
    have hk : k = j' := (logFile_inj hj').2
    rcases hbefore w hw j hj with hlt | ⟨-, hle⟩
    · exact absurd hd hlt.ne
    · omega
  · intro name
    rw [countP_concat_name]
    split_ifs with hn
    · rw [← hn]
      omega
    · exact hf.bounded name

theorem writeLog_steady (hi : InFile date fileName splitLines log last) (hs : 1 ≤ splitLines)
    (h : Steady date fileName log last e) : ∃ name log', writeLog date log e = some (name, log') ∧
      log'.written = log.written ++ [(name, e.1)] ∧
      InFile date fileName splitLines log' (date e.1) := by
  obtain ⟨count, hrotate, hcase⟩ := rotate_steady hi hs h
  have hwrite : writeLog date log e = some (logFile (dirPart fileName) (baseName fileName)
      (date e.1) (count / splitLines), { log with
        mCount := count
        mToday := (date e.1).mday
        mFp := some (logFile (dirPart fileName) (baseName fileName) (date e.1) (count / splitLines))
        written := log.written ++ [(logFile (dirPart fileName) (baseName fileName) (date e.1)
          (count / splitLines), e.1)] }) := by
    rw [writeLog, hrotate]
    rfl
  refine ⟨_, _, hwrite, rfl, ?_⟩
  have hmod := Nat.mod_lt count (show splitLines > 0 from hs)
  -- the file that the record goes to has room
  have hroom : log.written.countP (fun w => w.1 = logFile (dirPart fileName) (baseName fileName)
      (date e.1) (count / splitLines)) ≤ count % splitLines := by
    rcases hcase with ⟨hd, hk, hm⟩ | hnew
    · have hcurrent := hi.current
      rw [hd, hk, hm]
      exact hcurrent
    · rw [countP_new hi hnew]
      exact Nat.zero_le _
  have hbefore : ∀ w ∈ log.written, ∀ k,
      w.1 = logFile (dirPart fileName) (baseName fileName) (date w.2) k →
        date w.2 < date e.1 ∨ date w.2 = date e.1 ∧ k ≤ count / splitLines := by
    intro w hw k hk
    have hb := hi.before w hw k hk
    rcases hcase with ⟨hd, hq, -⟩ | hlt | ⟨hd, hq⟩
    · rw [hd, hq]
      exact hb
    · left
      rcases hb with hb | ⟨hb, -⟩
      · exact hb.trans hlt
      · rwa [hb]
    · rw [hd]
      exact hb.imp_right fun h => ⟨h.1, h.2.trans hq.le⟩
  constructor
  · exact hi.dirName
  · exact hi.logName
  · exact hi.split
  · rfl
  · rfl
  · intro w hw k hk
    rcases List.mem_append.mp hw with hw | hw
    · exact hbefore w hw k hk
    · obtain rfl := List.mem_singleton.mp hw
      exact Or.inr ⟨rfl, (logFile_inj hk).2.ge⟩
  · change (log.written ++ [_]).countP _ ≤ count % splitLines + 1
    rw [countP_concat_name, if_pos rfl]
    exact Nat.add_le_add_right hroom 1
  · exact hi.filed.concat hbefore (hroom.trans_lt hmod)

/-- The date of the record that came last. -/
def latest (date : R → Date) (_ : Date) (_ : Log R) (e : R × Bool) (_ : Str) : Date := date e.1

/-- The calls go on in steady order. -/
def SteadyRun (date : R → Date) (fileName : Str) (log : Log R) (last : Date)
    (es : List (R × Bool)) : Prop :=
  Allowed (annotate (writeLog date) (latest date)) (fun x e => Steady date fileName x.1 x.2 e)
    (log, last) es

instance (date : R → Date) (fileName : Str) (log : Log R) (last : Date) (es : List (R × Bool)) :
    Decidable (SteadyRun date fileName log last es) :=
  inferInstanceAs (Decidable (Allowed _ _ _ _))

theorem run_steady {es : List (R × Bool)} (hi : InFile date fileName splitLines log last)
    (hs : 1 ≤ splitLines) (ha : SteadyRun date fileName log last es) : ∃ names log' last',
      run (writeLog date) log es = some (names, log') ∧
      log'.written = log.written ++ names.zip (es.map Prod.fst) ∧
      InFile date fileName splitLines log' last' := by
  induction es generalizing log last with
  | nil => exact ⟨[], log, last, rfl, (List.append_nil _).symm, hi⟩
  | cons e es ih =>
    obtain ⟨name, log₁, hwrite, hwritten, hi₁⟩ := writeLog_steady hi hs ha.1
    have hstep : annotate (writeLog date) (latest date) (log, last) e =
        some (name, (log₁, date e.1)) := by
      simp only [annotate, hwrite, Option.map_some, latest]
    obtain ⟨names, log', last', hr, hw, hi'⟩ := ih hi₁ ((allowed_cons hstep).mp ha).2
    refine ⟨name :: names, log', last', ?_, ?_, hi'⟩
    · rw [run_cons hwrite, hr]
      rfl
    · rw [hw, hwritten, List.append_assoc]
      rfl

end Run

/-- Every record of a steady run is written, to a file of its date that holds no more than
`split_lines` of them. -/
theorem filed_of_run (date : R → Date) (fileName : Str) {splitLines : ℕ} {d₀ : Date}
    (hs : 1 ≤ splitLines) (hfits : InitFits fileName d₀) :
    ∃ log : Log R, init fileName splitLines d₀ true = some (true, log) ∧
      ∀ es, SteadyRun date fileName log d₀ es → ∃ names log',
        run (writeLog date) log es = some (names, log') ∧
        log'.written = names.zip (es.map Prod.fst) ∧
        Filed date (dirPart fileName) (baseName fileName) splitLines log'.written := by
  obtain ⟨logName, hbase, hinit⟩ := init_of_fits (R := R) hfits splitLines
  refine ⟨_, hinit, fun es ha => ?_⟩
  have hi : InFile date fileName splitLines (⟨dirPart fileName, logName, splitLines, 0, d₀.mday,
      some (logFile (dirPart fileName) (baseName fileName) d₀ 0), []⟩ : Log R) d₀ := by
    constructor
    · rfl
    · exact hbase
    · rfl
    · rfl
    · rw [Nat.zero_div]
    · exact nofun
    · exact Nat.zero_le _
    · exact ⟨nofun, List.Pairwise.nil, fun _ => Nat.zero_le _⟩
  obtain ⟨names, log', last', hr, hw, hi'⟩ := run_steady hi hs ha
  exact ⟨names, log', hr, hw, hi'.filed⟩

def august : Date := { july with mon := 8, mon_pos := by decide, mon_le := by decide }

/-- Files of one line each, in a directory. -/
theorem filed_july : ∃ log : Log Date, init (lit "./Log/log") 1 july true = some (true, log) ∧
    ∃ names log', run (writeLog id) log [(july, true), (july, true)] = some (names, log') ∧
      log'.written = names.zip [july, july] ∧
      Filed id (lit "./Log/") (lit "log") 1 log'.written := by
  have hfits : InitFits (lit "./Log/log") july := by decide +kernel
  obtain ⟨log, hinit, h⟩ := filed_of_run (R := Date) id (lit "./Log/log") (le_refl 1) hfits
  have hlog := (Prod.mk.inj (Option.some.inj hinit)).2
  obtain ⟨names, log', hr, hw, hf⟩ := h [(july, true), (july, true)]
    (by rw [← hlog]; decide +kernel)
  exact ⟨log, hinit, names, log', hr, hw, hf⟩

/-- A record that comes a month after the last one goes to the old file, and a file that has no
directory loses its base name. -/
theorem not_filed : july ≤ august ∧
    (∃ log : Log Date, init (lit "./Log/log") 50000 july true = some (true, log) ∧
      ∃ names log', run (writeLog id) log [(august, true)] = some (names, log') ∧
        ¬ Filed id (lit "./Log/") (lit "log") 50000 log'.written) ∧
    ∃ log : Log Date, init (lit "log") 1 july true = some (true, log) ∧
      ∃ names log', run (writeLog id) log [(july, true)] = some (names, log') ∧
        ¬ Filed id [] (lit "log") 1 log'.written := by
  refine ⟨by decide, ⟨_, rfl, _, _, rfl, fun h => ?_⟩, ⟨_, rfl, _, _, rfl, fun h => ?_⟩⟩
  · obtain ⟨k, hk⟩ := h.named (lit "./Log/2024_07_09_log", august) (by decide +kernel)
    have hname : logFile (lit "./Log/") (lit "log") july 0 = lit "./Log/2024_07_09_log" := by
      decide +kernel
    exact absurd (logFile_inj (hname.trans hk)).1 (by decide)
  · obtain ⟨k, hk⟩ := h.named (lit "2024_07_09_.1", july) (by decide +kernel)
    have hname : july.text ++ lit ".1" = lit "2024_07_09_.1" := by decide +kernel
    have hrest := hname.trans hk
    rw [logFile, List.nil_append, List.append_assoc] at hrest
    have hhead := congrArg List.head? (Date.text_append_inj hrest).2
    rw [List.head?_append_of_ne_nil _ (by decide)] at hhead
    exact absurd hhead (by decide)

end Log
end DCache
