import Mathlib.Data.Nat.Digits.Lemmas
import DCache.Bytes

/-! Addresses and their texts (`endPoint.h`), with the C library functions that it calls. -/
namespace DCache

/-- The digit characters of a number, none for zero. -/
def digitChars (n : ℕ) : Str := (Nat.digits 10 n).reverse.map (fun d => Fin.ofNat 256 (48 + d))

/-- `%d` of a number that is not negative. -/
def decimal (n : ℕ) : Str := if n = 0 then [48] else digitChars n

/-- `%03d` -/
def decimal3 (n : ℕ) : Str := List.replicate (3 - (decimal n).length) 48 ++ decimal n

/-- `%d` -/
def formatInt (n : ℤ) : Str := if n < 0 then 45 :: decimal n.natAbs else decimal n.natAbs

def isDigit (ch : Byte) : Bool := 48 ≤ ch.val && ch.val ≤ 57

/-- The value of the leading digits, appended to `n`. -/
def digitsValue : ℕ → Str → ℕ
  | n, [] => n
  | n, ch :: s => if isDigit ch then digitsValue (n * 10 + (ch.val - 48)) s else n

/-- Conversion to `int`, and the result of an `int` operation that overflows. -/
def int32 (n : ℤ) : ℤ := Int.bmod n (2 ^ 32)

/-- A `strtol` that saturates, cut to `int`. -/
def atoi (s : Str) : ℤ :=
  let s := s.dropWhile (fun ch => ch.val = 32 || (9 ≤ ch.val && ch.val ≤ 13))
  match s with
  | 45 :: s => int32 (max (-2 ^ 63) (-(digitsValue 0 s : ℤ)))
  | 43 :: s => int32 (min (2 ^ 63 - 1) (digitsValue 0 s))
  | s => int32 (min (2 ^ 63 - 1) (digitsValue 0 s))

/-- The four bytes of an IPv4 address, in network order. -/
structure InAddr where
  b₀ : Byte
  b₁ : Byte
  b₂ : Byte
  b₃ : Byte
deriving DecidableEq

/-- `INADDR_ANY` -/
def InAddr.any : InAddr := ⟨0, 0, 0, 0⟩

/-- `AF_INET` -/
def afInet : ℕ := 2

instance neZero_port : @NeZero ℕ Zero.ofOfNat0 65536 := ⟨by decide⟩

/-- The fields as they stand in memory: the port is in network order. -/
structure SockAddrIn where
  sinFamily : ℕ
  sinPort : Fin 65536
  sinAddr : InAddr
deriving DecidableEq

/-- The two bytes of a 16-bit number in the other order. -/
def swap16 (n : Fin 65536) : Fin 65536 := ⟨n.val % 256 * 256 + n.val / 256, by omega⟩

def htons (port : ℤ) : Fin 65536 := swap16 ⟨(port % 65536).toNat, by omega⟩

def ntohs (port : Fin 65536) : ℤ := (swap16 port).val

def dot : Byte := 46

def colon : Byte := 58

def inetNtoa (a : InAddr) : Str :=
  List.intercalate [dot] [decimal a.b₀, decimal a.b₁, decimal a.b₂, decimal a.b₃]

/-- A field of a dotted quad: a decimal number up to 255 without leading zeros. -/
def octet? (s : Str) : Option Byte :=
  if h : digitsValue 0 s < 256 ∧ decimal (digitsValue 0 s) = s then some ⟨_, h.1⟩ else none

def inetPton (s : Str) : Option InAddr :=
  match s.splitOn dot with
  | [s₀, s₁, s₂, s₃] => do some ⟨← octet? s₀, ← octet? s₁, ← octet? s₂, ← octet? s₃⟩
  | _ => none

def str2portLoop : ℤ → Str → ℤ
  | port, [] => port
  | port, ch :: s => if isDigit ch then str2portLoop (int32 (port * 10 + (ch.val - 48))) s else -1

def str2port (portStr : Str) : ℤ := str2portLoop 0 portStr

def port2strLoop : ℕ → ℤ → Str → Str
  | 0, _, portStr => portStr
  | fuel + 1, p, portStr =>
    if p = 0 then portStr
    else port2strLoop fuel (p.tdiv 10) (Fin.ofNat 256 (p.tmod 10 + 48).toNat :: portStr)

/-- The loop divides by ten and so ends within `|port|` turns. -/
def port2str (port : ℤ) : Str := port2strLoop port.natAbs port []

def sockAddr2str (addr : SockAddrIn) : Str :=
  inetNtoa addr.sinAddr ++ [colon] ++ port2str (ntohs addr.sinPort)

/-- `res` is what the uninitialised result holds. -/
def str2sockAddr (res : SockAddrIn) (ipPort : Str) : SockAddrIn :=
  if ipPort = [] then res
  else
    let ip := ipPort.takeWhile (fun ch => ch ≠ colon)
    let port := str2port ((ipPort.dropWhile (fun ch => ch ≠ colon)).drop 1)
    if port ≠ 0 then ⟨afInet, htons port, (inetPton (cstr ip)).getD res.sinAddr⟩ else res

section Digits
variable {n : ℕ}

theorem digitChars_eq (h : n ≠ 0) :
    digitChars n = digitChars (n / 10) ++ [Fin.ofNat 256 (48 + n % 10)] := by
  simp [digitChars, Nat.digits_def' (b := 10) (by norm_num) (Nat.pos_of_ne_zero h)]

private theorem digit_val (d : ℕ) (h : d < 10) : (Fin.ofNat 256 (48 + d)).val = 48 + d :=
  Nat.mod_eq_of_lt (by omega)

theorem isDigit_of_mem_decimal {b : Byte} (h : b ∈ decimal n) : isDigit b = true := by
  unfold decimal at h
  split_ifs at h with hn
  · rw [List.mem_singleton.mp h]
    rfl
  · simp only [digitChars, List.mem_map, List.mem_reverse] at h
    obtain ⟨d, hd, rfl⟩ := h
    have := Nat.digits_lt_base (b := 10) (by norm_num) hd
    simp only [isDigit, digit_val d this, Bool.and_eq_true, decide_eq_true_eq]
    omega

theorem notMem_decimal {ch : Byte} (h : isDigit ch = false) (n : ℕ) : ch ∉ decimal n :=
  fun hm => by simp [isDigit_of_mem_decimal hm] at h

theorem digitsValue_digitChars (n : ℕ) (s : Str) :
    digitsValue 0 (digitChars n ++ s) = digitsValue n s := by
  induction n using Nat.strong_induction_on generalizing s with
  | _ n ih =>
    by_cases hn : n = 0
    · subst hn
      simp [digitChars]
    · have hd := digit_val (n % 10) (by omega)
      rw [digitChars_eq hn, List.append_assoc, ih _ (by omega), List.singleton_append, digitsValue,
        if_pos (by simp only [isDigit, hd, Bool.and_eq_true, decide_eq_true_eq]; omega), hd]
      congr 1
      omega

@[simp] theorem digitsValue_decimal (n : ℕ) : digitsValue 0 (decimal n) = n := by
  unfold decimal
  split_ifs with hn
  · rw [hn]; rfl
  · have h := digitsValue_digitChars n []
    rwa [List.append_nil] at h

theorem decimal_injective : Function.Injective decimal := by
  intro n n' h
  rw [← digitsValue_decimal n, h, digitsValue_decimal]

theorem int32_of_lt {n : ℤ} (h₀ : 0 ≤ n) (h : n < 2 ^ 31) : int32 n = n := by
  unfold int32
  rw [Int.bmod_eq_of_le] <;> omega

theorem str2port_digitChars (n : ℕ) (h : n < 2 ^ 31) : str2port (digitChars n) = n := by
  have key : ∀ s, str2portLoop 0 (digitChars n ++ s) = str2portLoop n s := by
    induction n using Nat.strong_induction_on with
    | _ n ih =>
      intro s
      by_cases hn : n = 0
      · subst hn
        simp [digitChars]
      · have hd := digit_val (n % 10) (by omega)
        rw [digitChars_eq hn, List.append_assoc, ih _ (by omega) (by omega), List.singleton_append,
          str2portLoop,
          if_pos (by simp only [isDigit, hd, Bool.and_eq_true, decide_eq_true_eq]; omega), hd]
        congr 1
        rw [int32_of_lt] <;> omega
  have h := key []
  rwa [List.append_nil] at h

theorem port2str_eq (n : ℕ) : port2str n = digitChars n := by
  have key : ∀ (fuel m : ℕ) (s : Str), m ≤ fuel → port2strLoop fuel m s = digitChars m ++ s := by
    intro fuel
    induction fuel with
    | zero =>
      intro m s hm
      obtain rfl : m = 0 := by omega
      simp [port2strLoop, digitChars]
    | succ fuel ih =>
      intro m s hm
      unfold port2strLoop
      by_cases hm0 : m = 0
      · subst hm0
        simp [digitChars]
      · have hdiv : (m : ℤ).tdiv 10 = (m / 10 : ℕ) := by
          rw [Int.tdiv_eq_ediv_of_nonneg (by omega)]; norm_cast
        have hmod : ((m : ℤ).tmod 10 + 48).toNat = 48 + m % 10 := by
          rw [Int.tmod_eq_emod_of_nonneg (by omega)]; omega
        rw [if_neg (by exact_mod_cast hm0), hdiv, hmod, ih _ _ (by omega), digitChars_eq hm0,
          List.append_assoc, List.singleton_append]
  simpa [port2str] using key n n [] le_rfl

theorem length_decimal_le {k : ℕ} (hk : 1 ≤ k) (h : n < 10 ^ k) : (decimal n).length ≤ k := by
  unfold decimal
  split_ifs
  · exact hk
  · simpa [digitChars] using (Nat.digits_length_le_iff (by norm_num) n).mpr h

theorem atoi_formatInt (h : n < 2 ^ 31) : atoi (formatInt n) = n := by
  have hdig : ∀ b ∈ decimal n, isDigit b = true := fun b hb => isDigit_of_mem_decimal hb
  have hval := digitsValue_decimal n
  have hf : formatInt n = decimal n := by simp [formatInt]
  rw [hf]
  unfold atoi
  cases hs : decimal n with
  | nil =>
    rw [hs] at hval
    obtain rfl : n = 0 := hval.symm
    decide
  | cons b s =>
    have hb := hdig b (by simp [hs])
    simp only [isDigit, Bool.and_eq_true, decide_eq_true_eq] at hb
    rw [List.dropWhile_cons_of_neg (by simp; omega)]
    rw [hs] at hval
    dsimp only
    split
    · next h => simp [(List.cons.inj h).1] at hb
    · next h => simp [(List.cons.inj h).1] at hb
    · rw [hval, min_eq_right (by omega), int32_of_lt (by omega) (by omega)]

end Digits

section SockAddr
variable (a : InAddr) (addr : SockAddrIn)

@[simp] theorem octet?_decimal (b : Byte) : octet? (decimal b) = some b := by
  have h : digitsValue 0 (decimal b) < 256 ∧
      decimal (digitsValue 0 (decimal b)) = decimal b := by
    rw [digitsValue_decimal]
    exact ⟨b.isLt, rfl⟩
  rw [octet?, dif_pos h]
  simp

theorem inetPton_inetNtoa : inetPton (inetNtoa a) = some a := by
  unfold inetPton inetNtoa
  rw [List.splitOn_intercalate]
  · simp
  · simp only [List.mem_cons, List.not_mem_nil, or_false, forall_eq_or_imp, forall_eq]
    exact ⟨notMem_decimal rfl _, notMem_decimal rfl _, notMem_decimal rfl _,
      notMem_decimal rfl _⟩
  · simp

theorem mem_inetNtoa {ch : Byte} (h : ch ∈ inetNtoa a) : isDigit ch = true ∨ ch = dot := by
  simp only [inetNtoa, List.intercalate, List.intersperse, List.flatten_cons, List.flatten_nil,
    List.mem_append, List.mem_singleton, List.append_nil] at h
  have := fun n => isDigit_of_mem_decimal (n := n) (b := ch)
  tauto

@[simp] theorem swap16_swap16 (n : Fin 65536) : swap16 (swap16 n) = n := by
  obtain ⟨n, hn⟩ := n
  have hq : n / 256 < 256 := by omega
  have hmod : (n % 256 * 256 + n / 256) % 256 = n / 256 := by omega
  have hdiv : (n % 256 * 256 + n / 256) / 256 = n % 256 := by omega
  simp only [swap16, Fin.mk.injEq, hmod, hdiv]
  omega

theorem ntohs_htons {p : ℕ} (h : p < 65536) : ntohs (htons p) = p := by
  have hp : ((p : ℤ) % 65536).toNat = p := by omega
  simp only [ntohs, htons, swap16_swap16, hp]

theorem htons_ntohs (p : Fin 65536) : htons (ntohs p) = p := by
  obtain ⟨q, hq⟩ : ∃ q, swap16 p = q := ⟨_, rfl⟩
  have hn : ((q.val : ℤ) % 65536).toNat = q.val := by omega
  rw [ntohs, hq, htons]
  simp only [hn, Fin.eta]
  rw [← hq, swap16_swap16]

theorem mem_sockAddr2str {ch : Byte} (h : ch ∈ sockAddr2str addr) :
    isDigit ch = true ∨ ch = dot ∨ ch = colon := by
  obtain ⟨p, hp⟩ : ∃ p : ℕ, ntohs addr.sinPort = p := ⟨_, rfl⟩
  simp only [sockAddr2str, hp, port2str_eq, List.mem_append, List.mem_singleton] at h
  rcases h with (h | h) | h
  · exact (mem_inetNtoa _ h).imp_right Or.inl
  · exact Or.inr (Or.inr h)
  · refine Or.inl (isDigit_of_mem_decimal (n := p) ?_)
    rw [decimal, if_neg ?_]
    · exact h
    · rintro rfl
      simp [digitChars] at h

theorem notMem_sockAddr2str {b : Byte} (hd : isDigit b = false) (hdot : b ≠ dot)
    (hc : b ≠ colon) : b ∉ sockAddr2str addr := by
  intro h
  rcases mem_sockAddr2str addr h with h | h | h
  · simp [hd] at h
  · exact hdot h
  · exact hc h

theorem newline_notMem_sockAddr2str : newline ∉ sockAddr2str addr :=
  notMem_sockAddr2str addr (by decide) (by decide) (by decide)

theorem zero_notMem_sockAddr2str : (0 : Byte) ∉ sockAddr2str addr :=
  notMem_sockAddr2str addr (by decide) (by decide) (by decide)

theorem length_sockAddr2str : (sockAddr2str addr).length ≤ 21 := by
  have ho : ∀ b : Byte, (decimal b).length ≤ 3 := fun b => length_decimal_le (by norm_num) (by omega)
  have hp : (port2str (ntohs addr.sinPort)).length ≤ 5 := by
    have hlt := (swap16 addr.sinPort).isLt
    rw [ntohs, port2str_eq, digitChars, List.length_map, List.length_reverse,
      Nat.digits_length_le_iff (by norm_num)]
    omega
  have h₀ := ho addr.sinAddr.b₀
  have h₁ := ho addr.sinAddr.b₁
  have h₂ := ho addr.sinAddr.b₂
  have h₃ := ho addr.sinAddr.b₃
  simp [sockAddr2str, inetNtoa, List.intercalate, List.intersperse]
  omega

/-- The text of an address is read back, whatever the result held before. -/
theorem str2sockAddr_sockAddr2str (res : SockAddrIn) (hf : addr.sinFamily = afInet)
    (hp : addr.sinPort ≠ 0) : str2sockAddr res (sockAddr2str addr) = addr := by
  obtain ⟨p, hp'⟩ : ∃ p : ℕ, ntohs addr.sinPort = p := ⟨_, rfl⟩
  have hlt : p < 65536 := by
    have : ((p : ℕ) : ℤ) < 65536 := by rw [← hp']; simp only [ntohs]; omega
    exact_mod_cast this
  have hne : p ≠ 0 := by
    rintro rfl
    rw [← htons_ntohs addr.sinPort, hp'] at hp
    exact hp rfl
  have hcolon : ∀ ch ∈ inetNtoa addr.sinAddr, decide (ch ≠ colon) = true := by
    intro ch hch
    rw [decide_eq_true_eq]
    rintro rfl
    rcases mem_inetNtoa _ hch with h | h <;> revert h <;> decide
  have hip : (sockAddr2str addr).takeWhile (fun ch => ch ≠ colon) = inetNtoa addr.sinAddr := by
    rw [sockAddr2str, List.append_assoc, List.takeWhile_append_of_pos hcolon]
    simp
  have hport : ((sockAddr2str addr).dropWhile (fun ch => ch ≠ colon)).drop 1 = digitChars p := by
    rw [sockAddr2str, hp', port2str_eq, List.append_assoc, List.dropWhile_append_of_pos hcolon]
    simp
  have hnul : (0 : Byte) ∉ inetNtoa addr.sinAddr := by
    intro h
    rcases mem_inetNtoa _ h with h | h <;> revert h <;> decide
  unfold str2sockAddr
  rw [if_neg (by simp [sockAddr2str])]
  simp only [hip, hport, str2port_digitChars p (by omega), cstr_eq_self.mpr hnul,
    inetPton_inetNtoa, Option.getD_some]
  rw [if_pos (by exact_mod_cast hne), ← hp', htons_ntohs, ← hf]

end SockAddr
end DCache
